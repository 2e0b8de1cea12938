import NewtonKrylov.Main
import NewtonKrylov.Watch
import NewtonKrylov.Proofs.Frame
import NewtonKrylov.Proofs.Krylov.InPlace
import NewtonKrylov.Proofs.LineSearch.Inquiry
import NewtonKrylov.Proofs.Newton.Workspace
import NewtonKrylov.Proofs.Newton.Recurrence
import NewtonKrylov.Proofs.Exact
import NewtonKrylov.Proofs.LineSearch.Descent
import NewtonKrylov.Proofs.Newton.Descent
import NewtonKrylov.Proofs.Krylov.Arnoldi
import NewtonKrylov.Proofs.Krylov.Guarantee
import NewtonKrylov.Proofs.Krylov.Termination
import NewtonKrylov.Proofs.LineSearch.Bisection
import NewtonKrylov.Proofs.Newton.Course
import NewtonKrylov.Proofs.Newton.Outcome
import NewtonKrylov.Proofs.Krylov.Responses
import NewtonKrylov.Proofs.Newton.Affine
import NewtonKrylov.Proofs.LineSearch.NotANumber
import NewtonKrylov.Proofs.Discretion
import NewtonKrylov.Proofs.Newton.Recording
import NewtonKrylov.Proofs.Newton.Resumption
import NewtonKrylov.Proofs.Newton.Failure
import NewtonKrylov.Proofs.Newton.Allocation
import NewtonKrylov.Proofs.Newton.Subspace
import NewtonKrylov.Proofs.Newton.Equivariance
import NewtonKrylov.Proofs.Newton.Expansion
import NewtonKrylov.Proofs.Program.Sharing
import NewtonKrylov.Proofs.Program.Agreement
import NewtonKrylov.Proofs.Krylov.Budget
import NewtonKrylov.Proofs.Krylov.Monotone
import NewtonKrylov.Proofs.Validation
import NewtonKrylov.Proofs.Krylov.Finite
import NewtonKrylov.Proofs.Krylov.Caching
import NewtonKrylov.Proofs.Krylov.Division
import NewtonKrylov.Proofs.LineSearch.Symmetric
import NewtonKrylov.Proofs.LineSearch.Grid
import NewtonKrylov.Proofs.Krylov.Homogeneity
import NewtonKrylov.Proofs.Program.Copying
import NewtonKrylov.Proofs.Program.Requests
import NewtonKrylov.Proofs.Stiffness
import NewtonKrylov.Proofs.Newton.Product
import NewtonKrylov.Proofs.Krylov.Decomposition
