import CellLisp.Main
import CellLisp.Proofs.Growth
import CellLisp.Proofs.Discipline
import CellLisp.Proofs.Compilation
import CellLisp.Proofs.Control
import CellLisp.Proofs.Primitive
import CellLisp.Proofs.Persistence
import CellLisp.Proofs.Image
import CellLisp.Proofs.Atomicity
import CellLisp.Proofs.Fuel
import CellLisp.Proofs.Grammar
import CellLisp.Proofs.IntComputation
import CellLisp.Proofs.IntCompilation
import CellLisp.Proofs.History
import CellLisp.Proofs.Overwriting
import CellLisp.Proofs.Reading
import CellLisp.Proofs.Lexing
import CellLisp.Proofs.RoundTrip
import CellLisp.Proofs.Trust
import CellLisp.Proofs.Safety
import CellLisp.Proofs.Fault
import CellLisp.Proofs.Supply
import CellLisp.Proofs.Completion
import CellLisp.Proofs.Calling
import CellLisp.Proofs.Acyclicity
import CellLisp.Proofs.KnownShape
import CellLisp.Proofs.Agreement
import CellLisp.Proofs.Provenance
import CellLisp.Proofs.Seeding
import CellLisp.Proofs.Joining
import CellLisp.Proofs.Continuation
import CellLisp.Proofs.IntResult
import CellLisp.Proofs.PureExpr
import CellLisp.Proofs.Literal
import CellLisp.Proofs.Drawing
import CellLisp.Proofs.Layout
import CellLisp.Proofs.Relocation
import CellLisp.Proofs.Simulation
import CellLisp.Proofs.Padding
import CellLisp.Proofs.Balance
import CellLisp.Proofs.Overflow
import CellLisp.Proofs.Tower
import CellLisp.Proofs.Confinement
import CellLisp.Proofs.Buffers
import CellLisp.Proofs.Arity
import CellLisp.Proofs.Factorial
import CellLisp.Proofs.Filling
import CellLisp.Proofs.Division
import CellLisp.Proofs.Rendering
import CellLisp.Proofs.Storage
import CellLisp.Proofs.Naming
import CellLisp.Proofs.Loss
