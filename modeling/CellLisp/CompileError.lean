import CellLisp.Datum.Writer
import CellLisp.Nesting
import CellLisp.Representation

namespace CellLisp

inductive OperatorFault
  | emptyApplication
  | corruptBuiltin
  | notApplicable (tag : Tag)
  | noCode
  | unavailable (op : Builtin)
  | lost
deriving DecidableEq

def OperatorFault.reason : OperatorFault → String
  | emptyApplication => "empty application"
  | corruptBuiltin => "corrupt builtin"
  | notApplicable tag => s!"cannot apply {tag.name}"
  | noCode => "function has no compiled code"
  | unavailable op => s!"builtin `{op.name}` is not available on this target"
  | lost => "lost address"

inductive CompileError
  | argumentCount (op : Builtin) (expr : Datum)
  | undefinedSymbol (name : String)
  | typeMismatch (expr : Datum) (actual : Shape) (required : Rep)
  | notSymbol (expr : Datum) (actual : Tag)
  | nestingOverflow
  | unknownOperator (expr : Datum) (fault : OperatorFault)
deriving DecidableEq

namespace CompileError

-- The expression that an error is about cannot be written. Nothing reports such an error: to make it is
-- to follow an address that is lost.
def lossy : CompileError → Bool
  | argumentCount _ expr => expr.lossy
  | undefinedSymbol _ => false
  | typeMismatch expr _ _ => expr.lossy
  | notSymbol expr _ => expr.lossy
  | nestingOverflow => false
  | unknownOperator expr _ => expr.lossy

def mismatch (expr : Datum) (actual required : String) : String :=
  s!"type mismatch in {expr.write}: got {actual}, required {required}"

def message : CompileError → String
  | argumentCount op expr => s!"missing argument in {expr.write}, usage: {op.usage}"
  | undefinedSymbol name => s!"undefined symbol: {name}"
  | typeMismatch expr actual required => mismatch expr actual.name required.name
  | notSymbol expr actual => mismatch expr actual.name "symbol"
  | nestingOverflow => s!"function literals nested deeper than {Nesting.limit}"
  | unknownOperator expr fault => s!"{fault.reason}: {expr.write}"

end CompileError
end CellLisp
