import Splitting.Main
import Splitting.Matrix.Columns
import Splitting.Matrix.Pattern
import Splitting.Matrix.Square
import Splitting.Proofs.CoupledQp
import Splitting.Proofs.Covariance
import Splitting.Proofs.Safeguard
import Splitting.Proofs.Real.Certificate
import Splitting.Proofs.Real.Convergence
import Splitting.Proofs.Real.FixedPoint
import Splitting.Proofs.Bounds
import Splitting.Proofs.Calls
import Splitting.Proofs.Double.Order
import Splitting.Proofs.Limits
import Splitting.Proofs.Real.Agreement
import Splitting.Proofs.Real.LogDet
import Splitting.Proofs.Real.Threshold
import Splitting.Proofs.Real.Nearest
import Splitting.Proofs.Real.Fejer
import Splitting.Proofs.Retention
import Splitting.Proofs.Real.AnyOrder
import Splitting.Proofs.Real.Definite
import Splitting.Proofs.Handover
import Splitting.Proofs.Real.Quadratic
import Splitting.Proofs.Collapse
import Splitting.Proofs.Memory
import Splitting.Proofs.Real.Affine
import Splitting.Proofs.Real.Hull
import Splitting.Proofs.Judgement
import Splitting.Proofs.Reciprocal
import Splitting.Proofs.Real.Feasible
import Splitting.Proofs.Refusal
import Splitting.Proofs.Real.ProximalPoint
import Splitting.Proofs.Real.Identity
import Splitting.Proofs.Real.Dominance
import Splitting.Proofs.Retry
import Splitting.Proofs.Violation
import Splitting.Proofs.Snapping
import Splitting.Proofs.Drawing
import Splitting.Proofs.Misfit
