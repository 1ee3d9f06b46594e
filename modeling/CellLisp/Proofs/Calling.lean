import CellLisp.Proofs.Completion
import CellLisp.Proofs.Fault
import CellLisp.Proofs.Safety

namespace CellLisp

variable {i : Image} {ops : List Operation} {link : Link}

end CellLisp
