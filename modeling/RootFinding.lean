import RootFinding.Formula.Problem
import RootFinding.Settings.Describe
import RootFinding.Signature
import RootFinding.Proofs.Steps
import RootFinding.Proofs.Starts
import RootFinding.Proofs.Consistency
import RootFinding.Proofs.Success
import RootFinding.Proofs.Exact
import RootFinding.Proofs.TrustRadius
import RootFinding.Proofs.Frames
import RootFinding.Proofs.TrustRegion
import RootFinding.Proofs.Descent
import RootFinding.Proofs.Rejections
import RootFinding.Proofs.Merit
import RootFinding.Proofs.Fits
import RootFinding.Proofs.Safe
import RootFinding.Proofs.Routines
import RootFinding.Proofs.Systems
import RootFinding.Proofs.NormalEquations
import RootFinding.Proofs.Elimination
import RootFinding.Proofs.LevenbergMarquardt
import RootFinding.Proofs.Damping
import RootFinding.Proofs.Searches
import RootFinding.Proofs.Containment
import RootFinding.Proofs.Faults.Newton
import RootFinding.Proofs.Faults.PseudoTransient
import RootFinding.Proofs.Faults.TrustRegion
import RootFinding.Proofs.Faults.LevenbergMarquardt
import RootFinding.Proofs.Faults.SpectralResidual
import RootFinding.Proofs.Faults
import RootFinding.Proofs.Endings
import RootFinding.Proofs.Agreement
import RootFinding.Proofs.SafeModes
import RootFinding.Proofs.Traversal
import RootFinding.Proofs.JacobianCalls
import RootFinding.Proofs.Newton
import RootFinding.Proofs.ExactEntry
import RootFinding.Proofs.ExactComplex
import RootFinding.Proofs.Reuse
import RootFinding.Proofs.ExactMatrix
import RootFinding.Proofs.ExactJacobian
import RootFinding.Proofs.Forms
import RootFinding.Proofs.StepSize
import RootFinding.Proofs.PseudoTransient
import RootFinding.Proofs.Rollback
import RootFinding.Proofs.Best
import RootFinding.Proofs.Reporting
import RootFinding.Proofs.Passages
import RootFinding.Proofs.Calls
import RootFinding.Proofs.Costs
import RootFinding.Proofs.Statistics
import RootFinding.Proofs.StoredErrors
import RootFinding.Proofs.Dogleg
import RootFinding.Proofs.Prediction
import RootFinding.Proofs.Backtracking
import RootFinding.Proofs.SearchRange
import RootFinding.Proofs.SizeControl
import RootFinding.Proofs.Divisors
import RootFinding.Proofs.Uphill
import RootFinding.Proofs.Refusals
import RootFinding.Proofs.RadiusRange
import RootFinding.Proofs.SpectralSearch
import RootFinding.Proofs.SpectralCoefficient
import RootFinding.Proofs.SpectralSuccess
import RootFinding.Proofs.SafeHistory
import RootFinding.Proofs.Steady
import RootFinding.Proofs.ZeroTolerance
import RootFinding.Proofs.Affine
import RootFinding.Proofs.AffineSolves
import RootFinding.Proofs.Cosine
import RootFinding.Proofs.DiagonalSystems
import RootFinding.Proofs.SeparateEquations
import RootFinding.Proofs.Turns
import RootFinding.Proofs.Handles
import RootFinding.Proofs.Pivots
import RootFinding.Proofs.Singularity
import RootFinding.Proofs.Spellings
import RootFinding.Proofs.SparseRuns
import RootFinding.Proofs.ResidualErrors
import RootFinding.Proofs.Polynomials
import RootFinding.Proofs.Worlds
import RootFinding.Proofs.Geodesics
import RootFinding.Proofs.MeritHistory
import RootFinding.Proofs.SmoothRadius
import RootFinding.Proofs.Bookkeeping
import RootFinding.Proofs.StyleForest
import RootFinding.Proofs.RuledLines
